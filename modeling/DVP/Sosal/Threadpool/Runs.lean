import DVP.Lib.Schedule
import DVP.Sosal.Threadpool.Invariant

/-!
# Runs of a pool

* `threadpool_sound_iff`: in all states of an interleaving the items, the count, the event and the
  answers are what they should be if and only if, whenever `threadpool_issue` posts the semaphore,
  fewer than 2³¹ items are not recorded. Along any schedule that is fair to the workers, each item
  that was accepted is executed in the end.
-/

namespace DVP.Sosal

variable {α : Type}

/-- What is expected of a pool. -/
structure ThreadpoolSound (s : ThreadpoolSystem α) : Prop where
  accepted : ∀ x ∈ s.accepted, x.1 < s.pool.numWorkers
  /-- Each worker has executed the items it was given, in order and once, up to those it has. -/
  executed : ∀ w, itemsOf s.accepted w = itemsOf s.executed w ++ (s.pool.workers w).pending
  finished : s.finished = true ↔ ∀ w < s.pool.numWorkers, (s.pool.workers w).pending = []
  counted : s.issuer = none →
    s.pool.numCurrentItems.toInt = (s.accepted.length : Int) - (s.recorded : Int)
  signalled : s.issuer = none → s.issues ≠ [] →
    (s.pool.completed = true ↔ s.pool.numCurrentItems = 0)
  completes : ∀ r ∈ s.completes, r.blocking = true → r.ret = true → r.finished = true
  issues : ∀ r ∈ s.issues, r.ret = true ↔ r.accepted = r.workitems

/-- When `threadpool_issue` posts the semaphore, the items that are not recorded can be counted by an
`int32_t`. -/
def CountFits (s : ThreadpoolSystem α) : ThreadpoolAct α → Prop
  | .issuer => ∀ call, s.issuer = some call → call.over s.pool.numWorkers = true →
      s.accepted.length - s.recorded < 2 ^ 31
  | _ => True

/-- The pool as a machine that never faults. -/
def threadpoolMachine (s : ThreadpoolSystem α) (act : ThreadpoolAct α) :
    Except Empty (ThreadpoolSystem α × Unit) :=
  .ok (threadpoolStep s act, ())

/-! ## The event and the count -/

/-- The event is set only when no item is left, and is set then as soon as the semaphore is free. -/
structure Tracked (s : ThreadpoolSystem α) : Prop extends Placed s where
  quiet : s.pool.completed = true → s.accepted.length = s.recorded
  reset : ∀ call, s.issuer = some call → s.pool.completed = false
  fits : s.issuer = none → s.accepted.length - s.recorded < 2 ^ 31
  signalled : s.issuer = none → s.issues ≠ [] → s.accepted.length = s.recorded →
    s.pool.completed = true
  completes : ∀ r ∈ s.completes, r.blocking = true → r.ret = true → r.finished = true

namespace Tracked

variable {s : ThreadpoolSystem α} {w : Nat}

/-- No more items are recorded than were accepted. -/
theorem recorded_le (h : Tracked s) : s.recorded ≤ s.accepted.length :=
  Nat.le_trans h.toPlaced.recorded_le h.toPlaced.executed_le

/-- What is tracked makes the pool sound. -/
theorem sound (h : Tracked s) : ThreadpoolSound s where
  accepted := h.inPool
  executed := h.placed
  finished := h.toPlaced.finished_iff
  counted hfree := by
    have hle := h.recorded_le
    rw [h.counter, toInt_ofNat_eq_iff.mpr (h.fits hfree), Int.ofNat_sub hle]
  signalled hfree hissues := by
    have hle := h.recorded_le
    rw [h.counter, ofNat_eq_zero_iff (h.fits hfree)]
    constructor
    · intro hset
      have := h.quiet hset
      omega
    · intro hzero
      exact h.signalled hfree hissues (by omega)
  completes := h.completes
  issues := h.issues

/-- A new pool is tracked. -/
theorem initial {numThreads numWorkItems : Nat} (hworkers : 0 < numThreads) :
    Tracked (.initial (threadpoolCreate numThreads numWorkItems : Threadpool α)) where
  toPlaced := .initial hworkers
  quiet h := nomatch h
  reset _ h := nomatch h
  fits _ := Nat.two_pow_pos 31
  signalled _ h := absurd rfl h
  completes _ h := nomatch h

/-- Looking at the pool keeps it tracked. -/
theorem observe (h : Tracked s) : Tracked s.observe :=
  ⟨h.toPlaced.observe, h.quiet, h.reset, h.fits, h.signalled, h.completes⟩

/-- The pool is tracked when items are issued. -/
theorem issue (h : Tracked s) (workitems : List α) (hne : workitems ≠ []) :
    Tracked (s.issue workitems) := by
  have hplaced := h.toPlaced.issue workitems hne
  rw [ThreadpoolSystem.issue] at hplaced ⊢
  split at hplaced
  · exact h
  · exact ⟨hplaced, (by rintro ⟨⟩), fun _ _ => rfl, (by rintro ⟨⟩), (by rintro ⟨⟩), h.completes⟩

/-- No step of the loops of `threadpool_issue` touches the event. -/
theorem offer (h : Tracked s) {call : IssueCall α} {item : α} (hcall : s.issuer = some call)
    (hitem : call.workitems[call.i]? = some item) : Tracked (s.offer call item) := by
  have hplaced := h.toPlaced.offer (h.call call hcall) hitem
  have hreset := h.reset call hcall
  rw [ThreadpoolSystem.offer] at hplaced ⊢
  dsimp only at hplaced ⊢
  split at hplaced
  · refine ⟨hplaced, fun hset => ?_, fun _ _ => hreset, (by rintro ⟨⟩), (by rintro ⟨⟩), h.completes⟩
    exact absurd (hset.symm.trans hreset) (by decide)
  · refine ⟨hplaced, fun hset => ?_, fun _ _ => hreset, (by rintro ⟨⟩), (by rintro ⟨⟩), h.completes⟩
    exact absurd (hset.symm.trans hreset) (by decide)

/-- The pool is tracked when an issue ends, as long as the count does not overflow. -/
theorem leave (h : Tracked s) {call : IssueCall α} (hcall : s.issuer = some call)
    (hover : call.over s.pool.numWorkers = true) (hfits : s.accepted.length - s.recorded < 2 ^ 31) :
    Tracked (s.leave call) := by
  have hle := h.recorded_le
  have hcompleted : (s.leave call).pool.completed = true ↔ s.accepted.length = s.recorded := by
    rw [ThreadpoolSystem.leave]
    dsimp only
    rw [h.reset call hcall, Bool.or_false, beq_iff_eq, h.counter, ofNat_eq_zero_iff hfits]
    omega
  exact ⟨h.toPlaced.leave (h.call call hcall) hover, hcompleted.mp, nofun, fun _ => hfits,
    fun _ _ => hcompleted.mpr, h.completes⟩

/-- The pool is tracked when a worker records an item. -/
theorem record (h : Tracked s) {data : α} (hw : w < s.pool.numWorkers)
    (hphase : (s.pool.workers w).phase = .recording data) (hfree : s.issuer = none) :
    Tracked (s.record w) := by
  have hlt := Nat.lt_of_lt_of_le (h.toPlaced.recorded_lt hw hphase) h.toPlaced.executed_le
  have hfits := h.fits hfree
  have hcompleted : (s.record w).pool.completed = true ↔ s.accepted.length = s.recorded + 1 := by
    -- The event was reset, because the item that is done was not recorded.
    have hreset : s.pool.completed = false := by
      rw [← Bool.not_eq_true]
      intro hset
      have := h.quiet hset
      omega
    dsimp only [ThreadpoolSystem.record, Threadpool.setWorker]
    rw [hreset, Bool.or_false, h.counter, ofNat_sub_one (by omega), ofNat_sle_zero_iff (by omega)]
    omega
  refine ⟨h.toPlaced.record hw hphase, hcompleted.mp, fun call hcall => ?_, fun _ => ?_,
    fun _ _ => hcompleted.mpr, h.completes⟩
  · exact absurd (hfree.symm.trans hcall) nofun
  · have : (s.record w).accepted.length - (s.record w).recorded =
        s.accepted.length - (s.recorded + 1) := rfl
    omega

/-- The pool is tracked over every step of a worker. -/
theorem stepWorker (h : Tracked s) (hw : w < s.pool.numWorkers) : Tracked (s.stepWorker w) := by
  have hplaced := h.toPlaced.stepWorker hw
  rw [ThreadpoolSystem.stepWorker] at hplaced ⊢
  split at hplaced
  · split at hplaced
    · exact h
    · exact ⟨hplaced, h.quiet, h.reset, h.fits, h.signalled, h.completes⟩
  · exact ⟨hplaced, h.quiet, h.reset, h.fits, h.signalled, h.completes⟩
  · next data hphase =>
    split at hplaced
    · exact h
    · next hfree => exact h.record hw hphase hfree

/-- A blocking `threadpool_complete` returns `true_e` when it finds the event set, and then all items
have been recorded. -/
theorem complete (h : Tracked s) (t : Nat) (blocking : Bool) : Tracked (s.complete t blocking) := by
  have hplaced := h.toPlaced.complete t blocking
  rw [ThreadpoolSystem.complete] at hplaced ⊢
  split at hplaced
  · exact h
  · split_ifs at hplaced ⊢ with hblocking hset
    · refine ⟨hplaced, h.quiet, h.reset, h.fits, h.signalled, fun r hr => ?_⟩
      rcases List.mem_append.mp hr with hr | hr
      · exact h.completes r hr
      · obtain rfl := List.mem_singleton.mp hr
        exact fun _ _ => h.toPlaced.finished_of_recorded (h.quiet hset)
    · exact ⟨hplaced, h.quiet, h.reset, h.fits, h.signalled, h.completes⟩
    · refine ⟨hplaced, h.quiet, h.reset, h.fits, h.signalled, fun r hr => ?_⟩
      rcases List.mem_append.mp hr with hr | hr
      · exact h.completes r hr
      · obtain rfl := List.mem_singleton.mp hr
        exact (by rintro ⟨⟩)

/-- The pool is tracked when a thread wakes. -/
theorem wake (h : Tracked s) (t : Nat) : Tracked (s.wake t) := by
  have hplaced := h.toPlaced.wake t
  rw [ThreadpoolSystem.wake] at hplaced ⊢
  split at hplaced
  · exact h
  · refine ⟨hplaced, h.quiet, h.reset, h.fits, h.signalled, fun r hr => ?_⟩
    rcases List.mem_append.mp hr with hr | hr
    · exact h.completes r hr
    · obtain rfl := List.mem_singleton.mp hr
      intro _ hset
      rw [Bool.or_eq_true]
      exact .inr (h.toPlaced.finished_of_recorded (h.quiet hset))

/-- A step after which an `int32_t` can count the items keeps the invariant. -/
theorem step (h : Tracked s) {act : ThreadpoolAct α} (hfits : CountFits s act) :
    Tracked (threadpoolStep s act) := by
  refine observe ?_
  cases act with
  | issue item items => exact h.issue (item :: items) (List.cons_ne_nil _ _)
  | issuer =>
    rw [ThreadpoolSystem.perform, ThreadpoolSystem.stepIssuer]
    split
    · exact h
    · next call hcall =>
      split
      · next hover => exact h.leave hcall hover (hfits call hcall hover)
      · split
        · exact h
        · next item hitem => exact h.offer hcall hitem
  | worker w =>
    rw [ThreadpoolSystem.perform]
    split_ifs with hw
    · exact h.stepWorker hw
    · exact h
  | complete t blocking => exact h.complete t blocking
  | wake t => exact h.wake t

/-- A call that posts the semaphore with more items than an `int32_t` can count leaves a count that
is wrong. -/
theorem not_sound_of_not_countFits (h : Tracked s) {act : ThreadpoolAct α}
    (hfits : ¬CountFits s act) : ¬ThreadpoolSound (threadpoolStep s act) := by
  cases act with
  | issuer =>
    simp only [CountFits, not_forall] at hfits
    obtain ⟨call, hcall, hover, hbig⟩ := hfits
    have hle := h.recorded_le
    have hstep : threadpoolStep s .issuer = (s.leave call).observe := by
      rw [threadpoolStep, ThreadpoolSystem.perform, ThreadpoolSystem.stepIssuer, hcall]
      exact congrArg _ (if_pos hover)
    intro hsound
    rw [hstep] at hsound
    have hcounted : s.pool.numCurrentItems.toInt = (s.accepted.length : Int) - (s.recorded : Int) :=
      hsound.counted rfl
    rw [h.counter, ← Int.ofNat_sub hle] at hcounted
    exact hbig (toInt_ofNat_eq_iff.mp hcounted)
  | _ => exact absurd trivial hfits

end Tracked

/-! ## Fair schedules -/

/-- A worker is not at the wait for an item of an empty queue. -/
def HasWork (s : ThreadpoolSystem α) (w : Nat) : Prop :=
  match (s.pool.workers w).phase with
  | .reading => (s.pool.workers w).queue.items ≠ []
  | _ => True

/-- A worker is not at a wait that goes on. -/
def CanStep (s : ThreadpoolSystem α) (w : Nat) : Prop :=
  match (s.pool.workers w).phase with
  | .reading => (s.pool.workers w).queue.items ≠ []
  | .working _ => True
  | .recording _ => s.issuer = none

/-- The schedule is fair to the workers: a worker that has work takes its next step in the end. -/
def FairToWorkers (s : ThreadpoolSystem α) (acts : Nat → ThreadpoolAct α) : Prop :=
  ∀ w < s.pool.numWorkers, ∀ n, HasWork (Schedule.after threadpoolStep s acts n) w →
    ∃ m, n ≤ m ∧ acts m = .worker w ∧ CanStep (Schedule.after threadpoolStep s acts m) w

/-- How far a worker is from the end of its function, up to the next item. -/
def WorkerPhase.distance : WorkerPhase α → Nat
  | .working _ => 0
  | .reading => 1
  | .recording _ => 2

/-- A worker is at most two steps from its next item. -/
theorem WorkerPhase.distance_le (phase : WorkerPhase α) : phase.distance ≤ 2 := by
  cases phase <;> simp [distance]

/-- A bound for the number of steps a worker makes until it has executed `k` items. -/
def stepsTo (k w : Nat) (s : ThreadpoolSystem α) : Nat :=
  if (itemsOf s.executed w).length < k then
    3 * (k - (itemsOf s.executed w).length) + (s.pool.workers w).phase.distance
  else 0

/-- Nothing of the worker has changed but what waits in its queue. -/
structure Untouched (s s' : ThreadpoolSystem α) (w : Nat) : Prop where
  phase : (s'.pool.workers w).phase = (s.pool.workers w).phase
  executed : itemsOf s'.executed w = itemsOf s.executed w
  accepted : itemsOf s.accepted w <+: itemsOf s'.accepted w
  numWorkers : s'.pool.numWorkers = s.pool.numWorkers

namespace Untouched

variable {s s' : ThreadpoolSystem α} {w : Nat}

/-- Nothing has changed. -/
theorem refl (s : ThreadpoolSystem α) (w : Nat) : Untouched s s w := ⟨rfl, rfl, List.prefix_rfl, rfl⟩

/-- A worker that was not touched is as far from an item as before. -/
theorem stepsTo_eq (h : Untouched s s' w) (k : Nat) : stepsTo k w s' = stepsTo k w s := by
  rw [stepsTo, stepsTo, h.executed, h.phase]

/-- Callers of `threadpool_issue` and `threadpool_complete` leave the workers alone. -/
theorem stepIssuer (s : ThreadpoolSystem α) (w : Nat) : Untouched s s.stepIssuer w := by
  rw [ThreadpoolSystem.stepIssuer]
  split
  · exact refl s w
  · next call hcall =>
    split
    · exact ⟨rfl, rfl, List.prefix_rfl, rfl⟩
    · split
      · exact refl s w
      · next item hitem =>
        rw [ThreadpoolSystem.offer]
        dsimp only
        split
        · refine ⟨?_, rfl, ?_, rfl⟩
          · dsimp only [Threadpool.setWorker]
            by_cases hw : w = s.pool.nextWorkerIndex
            · rw [hw, Function.update_self]
            · rw [Function.update_of_ne hw]
          · rw [itemsOf_append]
            exact List.prefix_append _ _
        · exact ⟨rfl, rfl, List.prefix_rfl, rfl⟩

/-- A worker leaves the others alone. -/
theorem stepWorker (s : ThreadpoolSystem α) {v w : Nat} (h : w ≠ v) :
    Untouched s (s.stepWorker v) w := by
  have hother : ∀ worker, (s.pool.setWorker v worker).workers w = s.pool.workers w :=
    fun worker => Function.update_of_ne h ..
  rw [ThreadpoolSystem.stepWorker]
  split
  · split
    · exact refl s w
    · exact ⟨congrArg _ (hother _), rfl, List.prefix_rfl, rfl⟩
  · refine ⟨congrArg _ (hother _), ?_, List.prefix_rfl, rfl⟩
    rw [itemsOf_append]
    exact (congrArg _ (itemsOf_map_of_ne h [_])).trans (List.append_nil _)
  · split
    · exact refl s w
    · exact ⟨congrArg _ (Function.update_of_ne h ..), rfl, List.prefix_rfl, rfl⟩

/-- The steps of others leave a worker untouched. -/
theorem perform (s : ThreadpoolSystem α) {act : ThreadpoolAct α} (h : act ≠ .worker w) :
    Untouched s (s.perform act) w := by
  cases act with
  | issue item items =>
    rw [ThreadpoolSystem.perform, ThreadpoolSystem.issue]
    split
    · exact refl s w
    · exact ⟨rfl, rfl, List.prefix_rfl, rfl⟩
  | issuer => exact stepIssuer s w
  | worker v =>
    rw [ThreadpoolSystem.perform]
    split_ifs
    · exact stepWorker s fun heq => h (congrArg _ heq.symm)
    · exact refl s w
  | complete t blocking =>
    rw [ThreadpoolSystem.perform, ThreadpoolSystem.complete]
    split
    · exact refl s w
    · split_ifs
      · exact ⟨rfl, rfl, List.prefix_rfl, rfl⟩
      · exact ⟨rfl, rfl, List.prefix_rfl, rfl⟩
      · exact ⟨rfl, rfl, List.prefix_rfl, rfl⟩
  | wake t =>
    rw [ThreadpoolSystem.perform, ThreadpoolSystem.wake]
    split
    · exact refl s w
    · exact ⟨rfl, rfl, List.prefix_rfl, rfl⟩

end Untouched

section Worker

variable {s : ThreadpoolSystem α} {w : Nat}

/-- A step of a worker accepts no items. -/
theorem stepWorker_accepted (s : ThreadpoolSystem α) (w : Nat) :
    (s.stepWorker w).accepted = s.accepted ∧
      (s.stepWorker w).pool.numWorkers = s.pool.numWorkers := by
  rw [ThreadpoolSystem.stepWorker]
  split
  · split <;> exact ⟨rfl, rfl⟩
  · exact ⟨rfl, rfl⟩
  · split <;> exact ⟨rfl, rfl⟩

/-- A worker at a wait that goes on does nothing. -/
theorem stepWorker_of_not_canStep (h : ¬CanStep s w) : s.stepWorker w = s := by
  cases hphase : (s.pool.workers w).phase with
  | reading =>
    have hpop : (s.pool.workers w).queue.pop = none := by
      simpa [CanStep, hphase, Fifo.pop_eq_none_iff] using h
    simp only [ThreadpoolSystem.stepWorker, hphase, hpop]
  | working data => exact absurd (by simp [CanStep, hphase]) h
  | recording data =>
    have hissuer : s.issuer ≠ none := by simpa [CanStep, hphase] using h
    obtain ⟨call, hcall⟩ := Option.ne_none_iff_exists'.mp hissuer
    simp only [ThreadpoolSystem.stepWorker, hphase, hcall]

/-- A step brings a worker nearer to the end of the function, or to that of the next item. -/
theorem stepWorker_distance (h : CanStep s w) :
    ((s.stepWorker w).pool.workers w).phase.distance + 3 * (itemsOf s.executed w).length + 1 =
      (s.pool.workers w).phase.distance + 3 * (itemsOf (s.stepWorker w).executed w).length := by
  cases hphase : (s.pool.workers w).phase with
  | reading =>
    have hitems : (s.pool.workers w).queue.items ≠ [] := by simpa [CanStep, hphase] using h
    cases hpop : (s.pool.workers w).queue.pop with
    | none => exact absurd (Fifo.pop_eq_none_iff.mp hpop) hitems
    | some next =>
      simp only [ThreadpoolSystem.stepWorker, hphase, hpop, Threadpool.setWorker,
        Function.update_self, WorkerPhase.distance]
      omega
  | working data =>
    have hlen : (itemsOf [(w, data)] w).length = 1 := congrArg _ (itemsOf_map_self w [data])
    simp only [ThreadpoolSystem.stepWorker, hphase, Threadpool.setWorker, Function.update_self,
      WorkerPhase.distance, itemsOf_append, List.length_append, hlen]
    omega
  | recording data =>
    have hfree : s.issuer = none := by simpa [CanStep, hphase] using h
    simp only [ThreadpoolSystem.stepWorker, hphase, hfree, ThreadpoolSystem.record,
      Threadpool.setWorker, Function.update_self, WorkerPhase.distance]
    omega

end Worker

/-- The steps a worker still has to make for `k` items only get fewer, and a step of the worker is
one of them. -/
theorem stepsTo_step (k w : Nat) (s : ThreadpoolSystem α) (act : ThreadpoolAct α)
    (hw : w < s.pool.numWorkers) :
    stepsTo k w (threadpoolStep s act) ≤ stepsTo k w s ∧
      (act = .worker w → CanStep s w → 0 < stepsTo k w s →
        stepsTo k w (threadpoolStep s act) < stepsTo k w s) := by
  by_cases hact : act = .worker w
  · subst hact
    have hobserve : stepsTo k w (threadpoolStep s (.worker w)) = stepsTo k w (s.stepWorker w) := by
      rw [threadpoolStep, ThreadpoolSystem.perform, if_pos hw]
      rfl
    rw [hobserve]
    by_cases hcan : CanStep s w
    · have hdistance := stepWorker_distance hcan
      have hle := (s.pool.workers w).phase.distance_le
      rw [stepsTo, stepsTo]
      split_ifs <;> omega
    · rw [stepWorker_of_not_canStep hcan]
      exact ⟨Nat.le_refl _, fun _ h => absurd h hcan⟩
  · have heq : stepsTo k w (threadpoolStep s act) = stepsTo k w s :=
      (Untouched.perform s hact).stepsTo_eq k
    exact ⟨Nat.le_of_eq heq, fun h => absurd h hact⟩

/-- The items of a worker stay, and new ones come behind them. -/
theorem accepted_step (s : ThreadpoolSystem α) (act : ThreadpoolAct α) (w : Nat) :
    itemsOf s.accepted w <+: itemsOf (threadpoolStep s act).accepted w ∧
      (threadpoolStep s act).pool.numWorkers = s.pool.numWorkers := by
  by_cases hact : act = .worker w
  · subst hact
    rw [threadpoolStep, ThreadpoolSystem.perform]
    split_ifs
    · have h := stepWorker_accepted s w
      refine ⟨?_, h.2⟩
      rw [← h.1]
      exact List.prefix_rfl
    · exact ⟨List.prefix_rfl, rfl⟩
  · have h := Untouched.perform s hact
    exact ⟨h.accepted, h.numWorkers⟩

/-- Along a fair schedule a worker executes all items that its queue took. -/
theorem eventually_executed {s : ThreadpoolSystem α} {acts : Nat → ThreadpoolAct α} (hs : Placed s)
    (hfair : FairToWorkers s acts) (n w : Nat) (hw : w < s.pool.numWorkers) :
    ∃ m, n ≤ m ∧ itemsOf (Schedule.after threadpoolStep s acts n).accepted w <+:
      itemsOf (Schedule.after threadpoolStep s acts m).executed w := by
  generalize hgiven : itemsOf (Schedule.after threadpoolStep s acts n).accepted w = given
  let I : ThreadpoolSystem α → Prop := fun s' =>
    Placed s' ∧ s'.pool.numWorkers = s.pool.numWorkers ∧ given <+: itemsOf s'.accepted w
  have hI : ∀ s' act, I s' → I (threadpoolStep s' act) := fun s' act h =>
    ⟨h.1.step act, (accepted_step s' act w).2.trans h.2.1,
      h.2.2.trans (accepted_step s' act w).1⟩
  have hn : I (Schedule.after threadpoolStep s acts n) := by
    have hinv := Schedule.after_invariant
      (I := fun s' => Placed s' ∧ s'.pool.numWorkers = s.pool.numWorkers)
      (fun s' act h => ⟨h.1.step act, (accepted_step s' act w).2.trans h.2⟩) ⟨hs, rfl⟩ acts n
    exact ⟨hinv.1, hinv.2, hgiven ▸ List.prefix_rfl⟩
  obtain ⟨m, hm, ⟨hplaced, -, hgiven'⟩, hzero⟩ := Schedule.eventually_zero
    (stepsTo given.length w) hI
    (fun s' act h => (stepsTo_step given.length w s' act (h.2.1 ▸ hw)).1) hn
    (fun m hm h hpos => by
      -- A worker that has not executed all of `given` has work.
      have hwork : HasWork (Schedule.after threadpoolStep s acts m) w := by
        have hlt : (itemsOf (Schedule.after threadpoolStep s acts m).executed w).length <
            given.length := by
          by_contra hnot
          rw [stepsTo, if_neg hnot] at hpos
          exact absurd hpos (Nat.lt_irrefl 0)
        have hlen := h.2.2.length_le
        rw [h.1.placed, List.length_append] at hlen
        rw [HasWork]
        split
        · next hphase =>
          intro hnil
          rw [ThreadpoolWorker.pending, hphase, hnil] at hlen
          simp only [WorkerPhase.hand, List.append_nil, List.length_nil] at hlen
          omega
        · trivial
      obtain ⟨k, hk, hact, hcan⟩ := hfair w hw m hwork
      refine ⟨k, hk, fun hposk => ?_⟩
      have hinv := Schedule.after_invariant
        (I := fun s' => s'.pool.numWorkers = s.pool.numWorkers)
        (fun s' act h => (accepted_step s' act w).2.trans h) rfl acts k
      exact (stepsTo_step given.length w _ (acts k) (hinv ▸ hw)).2 hact hcan hposk)
  refine ⟨m, hm, ?_⟩
  -- What was executed is a prefix of what was accepted, and at least as long as `given`.
  refine List.prefix_of_prefix_length_le hgiven' ?_ ?_
  · rw [hplaced.placed]
    exact List.prefix_append _ _
  · by_contra hnot
    rw [stepsTo, if_pos (by omega)] at hzero
    omega

/-! ## The pool -/

/-- A pool does what is expected in all states of a run exactly when `threadpool_issue` never posts
the semaphore with more unrecorded items than an `int32_t` can count. -/
theorem threadpool_always_iff {numThreads numWorkItems : Nat} (hworkers : 0 < numThreads)
    (acts : List (ThreadpoolAct α)) :
    Machine.Always threadpoolMachine ThreadpoolSound
        (.initial (threadpoolCreate numThreads numWorkItems)) acts ↔
      Machine.Meets threadpoolMachine CountFits
        (.initial (threadpoolCreate numThreads numWorkItems)) acts := by
  refine Machine.always_iff_meets (I := Tracked) (fun s h => h.sound) ?_ ?_
    (Tracked.initial hworkers)
  · rintro s act s' r h hfits ⟨⟩
    exact h.step hfits
  · intro s act h hfits
    exact ⟨_, (), rfl, h.not_sound_of_not_countFits hfits⟩

/-- The items, the count, the event and the answers of a pool are what they should be in all states
of a run exactly when `CountFits` holds at each step, and along a schedule that is fair to the
workers every accepted item is executed in the end. -/
theorem threadpool_sound_iff {numThreads numWorkItems : Nat} (hworkers : 0 < numThreads) :
    (∀ acts : List (ThreadpoolAct α),
      Machine.Always threadpoolMachine ThreadpoolSound
          (.initial (threadpoolCreate numThreads numWorkItems)) acts ↔
        Machine.Meets threadpoolMachine CountFits
          (.initial (threadpoolCreate numThreads numWorkItems)) acts) ∧
    ∀ acts : Nat → ThreadpoolAct α,
      FairToWorkers (.initial (threadpoolCreate numThreads numWorkItems)) acts →
      ∀ n, ∀ w < numThreads, ∃ m, n ≤ m ∧
        itemsOf (Schedule.after threadpoolStep
          (.initial (threadpoolCreate numThreads numWorkItems)) acts n).accepted w <+:
        itemsOf (Schedule.after threadpoolStep
          (.initial (threadpoolCreate numThreads numWorkItems)) acts m).executed w :=
  ⟨threadpool_always_iff hworkers,
    fun _ hfair n w hw => eventually_executed (Placed.initial hworkers) hfair n w hw⟩

/-- The pool of the unit test, which has five workers with room for two items each. -/
theorem threadpool_sound_iff_unittest :
    (∀ acts : List (ThreadpoolAct (BitVec 32)),
      Machine.Always threadpoolMachine ThreadpoolSound (.initial (threadpoolCreate 5 2)) acts ↔
        Machine.Meets threadpoolMachine CountFits (.initial (threadpoolCreate 5 2)) acts) ∧
    ∀ acts : Nat → ThreadpoolAct (BitVec 32),
      FairToWorkers (.initial (threadpoolCreate 5 2)) acts →
      ∀ n, ∀ w < 5, ∃ m, n ≤ m ∧
        itemsOf (Schedule.after threadpoolStep (.initial (threadpoolCreate 5 2)) acts n).accepted w <+:
        itemsOf (Schedule.after threadpoolStep (.initial (threadpoolCreate 5 2)) acts m).executed w :=
  threadpool_sound_iff (by decide)

/-! ## A count that wraps -/

/-- The call that issues `N` items to the one worker of the pool has written `k` of them. -/
structure Filling (N k : Nat) (s : ThreadpoolSystem Unit) : Prop where
  numWorkers : s.pool.numWorkers = 1
  next : s.pool.nextWorkerIndex = 0
  capacity : (s.pool.workers 0).queue.capacity = N
  items : (s.pool.workers 0).queue.items.length = k
  accepted : s.accepted.length = k
  recorded : s.recorded = 0
  issuer : ∃ wrote items, s.issuer = some ⟨List.replicate N (), k, 0, wrote, items⟩

namespace Filling

variable {N k : Nat} {s : ThreadpoolSystem Unit}

/-- The queue has room for the next item. -/
theorem step (h : Filling N k s) (hk : k < N) : Filling N (k + 1) (threadpoolStep s .issuer) := by
  obtain ⟨wrote, items, hissuer⟩ := h.issuer
  have hlt : (s.pool.workers 0).queue.items.length < (s.pool.workers 0).queue.capacity := by
    rw [h.items, h.capacity]
    exact hk
  obtain ⟨queue, hpush⟩ := Fifo.exists_push (x := ()) hlt
  have hover : IssueCall.over ⟨List.replicate N (), k, 0, wrote, items⟩ s.pool.numWorkers = false := by
    rw [IssueCall.over, h.numWorkers, List.length_replicate]
    simp [Nat.ne_of_lt hk]
  have hitem : (List.replicate N ())[k]? = some () := by
    rw [List.getElem?_replicate, if_pos hk]
  have hstep : s.stepIssuer = s.offer ⟨List.replicate N (), k, 0, wrote, items⟩ () := by
    rw [ThreadpoolSystem.stepIssuer, hissuer]
    dsimp only
    rw [hover, hitem]
    rfl
  rw [threadpoolStep, ThreadpoolSystem.perform, hstep, ThreadpoolSystem.offer]
  dsimp only
  rw [h.next, hpush]
  dsimp only [Threadpool.setWorker, ThreadpoolSystem.observe]
  refine ⟨h.numWorkers, ?_, ?_, ?_, ?_, h.recorded, true, _, rfl⟩
  · rw [h.numWorkers]
  · dsimp only
    rw [Function.update_self]
    exact (Fifo.capacity_of_push hpush).trans h.capacity
  · dsimp only
    rw [Function.update_self, Fifo.items_of_push hpush, List.length_append, h.items,
      List.length_singleton]
  · rw [List.length_append, h.accepted, List.length_singleton]

/-- The call goes on to write all of its items, which are too many. -/
theorem not_meets (hN : 2 ^ 31 ≤ N) (d : Nat) (h : Filling N k s) (hk : k + d = N) :
    ¬Machine.Meets threadpoolMachine CountFits s (List.replicate (d + 1) .issuer) := by
  induction d generalizing k s with
  | zero =>
    rintro ⟨hfits, -⟩
    obtain ⟨wrote, items, hissuer⟩ := h.issuer
    have hlt := hfits _ hissuer (by simp [IssueCall.over, ← hk])
    rw [h.accepted, h.recorded] at hlt
    omega
  | succ d ih =>
    rintro ⟨-, hrest⟩
    exact ih (h.step (by omega)) (by omega) (hrest _ () rfl)

end Filling

/-- A call that issues 2³¹ items to a worker with room for them leaves a count of −2³¹. -/
theorem threadpool_miscounts :
    ¬∀ acts : List (ThreadpoolAct Unit),
      Machine.Always threadpoolMachine ThreadpoolSound (.initial (threadpoolCreate 1 (2 ^ 31)))
        acts := by
  intro h
  obtain ⟨N, hN⟩ : ∃ N, N + 1 = 2 ^ 31 := ⟨2 ^ 31 - 1, rfl⟩
  have hmeets := (threadpool_always_iff (by decide) _).mp
    (h (.issue () (List.replicate N ()) :: List.replicate (2 ^ 31 + 1) .issuer))
  have hfilling : Filling (2 ^ 31) 0
      (threadpoolStep (.initial (threadpoolCreate 1 (2 ^ 31))) (.issue () (List.replicate N ()))) := by
    refine ⟨rfl, rfl, rfl, rfl, rfl, rfl, false, [], ?_⟩
    have hitems : () :: List.replicate N () = List.replicate (2 ^ 31) () := by
      rw [← List.replicate_succ, hN]
    rw [← hitems]
    rfl
  exact hfilling.not_meets (Nat.le_refl _) (2 ^ 31) (Nat.zero_add _) (hmeets.2 _ () rfl)

end DVP.Sosal
