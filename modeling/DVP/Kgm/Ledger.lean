import DVP.Kgm.Moves

/-!
# The ledger of a manager

Every item a queue took and every result of an execution is somewhere. `Ledger` says where, as
counts of the items with any property, and `Ledger.step` says that every step keeps it. It holds of
all managers and of all runs, also of those that pop a queue or fill one.

* an accepted item is in `workqueue`, or a worker executes it, or it has been executed;
* the result of an execution is on its way to `retqueue`, in it, in the hands of a caller that will
  put it back, returned to a caller, or lost because `retqueue` refused it;
* the caller of an accepted item waits for its result, or has returned.
-/

namespace DVP.Kgm

open DVP.Sosal (Arch Fault)

variable {a : Arch} {m : Manager} {s s' : MailSystem a} {act : KgmAct a}

/-- The item a caller is about to write to `workqueue`. -/
def CallerPlace.issues : CallerPlace a → List (KgmThread a)
  | .issuing kgmt _ => [kgmt]
  | _ => []

/-- The item whose result a caller waits for. -/
def CallerPlace.awaits : CallerPlace a → List (KgmThread a)
  | .collecting kgmt _ => [kgmt]
  | .returning kgmt _ _ => [kgmt]
  | _ => []

/-- The result a caller has to put back. -/
def CallerPlace.holds : CallerPlace a → List (KgmThread a)
  | .returning _ kgmr _ => [kgmr]
  | _ => []

/-- The item a worker executes. -/
def WorkerPlace.executes : WorkerPlace a → List (KgmThread a)
  | .executing kgmt => [kgmt]
  | _ => []

/-- The result a worker has to write to `retqueue`. -/
def WorkerPlace.holds : WorkerPlace a → List (KgmThread a)
  | .writing kgmt _ => [kgmt]
  | _ => []

/-- The result a call returned with. -/
def Returned.result? (r : Returned a) : Option (KgmThread a) :=
  match r.outcome with
  | .result kgmr => some kgmr
  | _ => none

/-- The item of a call that returned after `workqueue` had taken it. -/
def Returned.served? (r : Returned a) : Option (KgmThread a) :=
  match r.outcome with
  | .refused => none
  | _ => some r.kgmt

/-- How many of the items in some places have a property. -/
def countAt {β : Type} (n : Nat) (places : Nat → β) (items : β → List (KgmThread a))
    (p : KgmThread a → Bool) : Nat :=
  Threads.total n places fun place => (items place).countP p

/-- A thread that moves takes its items along. -/
theorem countAt_update {β : Type} {n t : Nat} {places : Nat → β} {place : β} (ht : t < n)
    (hplace : places t = place) (items : β → List (KgmThread a)) (p : KgmThread a → Bool)
    (place' : β) :
    countAt n (Function.update places t place') items p + (items place).countP p =
      countAt n places items p + (items place').countP p := by
  have hsum := Threads.total_update places (fun place => (items place).countP p) ht place'
  rwa [hplace] at hsum

/-- Threads that are all at a place without items. -/
theorem countAt_const {β : Type} {n : Nat} {place : β} {items : β → List (KgmThread a)}
    {p : KgmThread a → Bool} (h : items place = []) : countAt n (fun _ => place) items p = 0 :=
  Threads.total_eq_zero_of_forall fun _ => by rw [h, List.countP_nil]

/-- Where the items and the results are. -/
structure Ledger (m : Manager) (s : MailSystem a) : Prop where
  work : ∀ p : NodesKey a → Bool,
    s.accepted.countP (p ·.nodes) =
      s.workqueue.items.countP (p ·.nodes) +
        countAt m.numWorkers s.workers WorkerPlace.executes (p ·.nodes) +
        s.executed.countP (p ·.nodes)
  results : ∀ p : KgmThread a → Bool,
    s.executed.countP p =
      countAt m.numWorkers s.workers WorkerPlace.holds p + s.retqueue.items.countP p +
        countAt s.numCallers s.callers CallerPlace.holds p +
        (s.returns.filterMap Returned.result?).countP p + s.lost.countP p
  callers : ∀ p : NodesKey a → Bool,
    s.accepted.countP (p ·.nodes) =
      countAt s.numCallers s.callers CallerPlace.awaits (p ·.nodes) +
        (s.returns.filterMap Returned.served?).countP (p ·.nodes)

namespace Ledger

/-- A step of a caller that neither takes items from a queue nor puts any into one. -/
theorem of_caller {c : Nat} {place place' : CallerPlace a} (h : Ledger m s) (hc : c < s.numCallers)
    (hplace : s.callers c = place) (hawaits : place'.awaits = place.awaits)
    (hholds : place'.holds = place.holds) : Ledger m (s.setCaller c place') := by
  refine ⟨h.work, fun p => ?_, fun p => ?_⟩
  · have hmove := countAt_update hc hplace CallerPlace.holds p place'
    have hsum := h.results p
    rw [hholds] at hmove
    simp only [KgmSystem.setCaller]
    omega
  · have hmove := countAt_update hc hplace CallerPlace.awaits (p ·.nodes) place'
    have hsum := h.callers p
    rw [hawaits] at hmove
    simp only [KgmSystem.setCaller]
    omega

/-- A step of a worker that neither takes items from a queue nor puts any into one. -/
theorem of_worker {w : Nat} {place place' : WorkerPlace a} (h : Ledger m s) (hw : w < m.numWorkers)
    (hplace : s.workers w = place) (hexecutes : place'.executes = place.executes)
    (hholds : place'.holds = place.holds) : Ledger m (s.setWorker w place') := by
  refine ⟨fun p => ?_, fun p => ?_, h.callers⟩
  · have hmove := countAt_update hw hplace WorkerPlace.executes (p ·.nodes) place'
    have hsum := h.work p
    rw [hexecutes] at hmove
    simp only [KgmSystem.setWorker]
    omega
  · have hmove := countAt_update hw hplace WorkerPlace.holds p place'
    have hsum := h.results p
    rw [hholds] at hmove
    simp only [KgmSystem.setWorker]
    omega

/-- A call returns. -/
theorem leave {c : Nat} {kgmt : KgmThread a} {place : CallerPlace a} (h : Ledger m s)
    (hc : c < s.numCallers) (hplace : s.callers c = place) {q' : Mailbox (KgmThread a)}
    {outcome : Outcome a}
    (hresults : ∀ p, s.retqueue.items.countP p + place.holds.countP p =
      q'.items.countP p + (Returned.result? ⟨kgmt, outcome⟩).toList.countP p)
    (hserved : (Returned.served? ⟨kgmt, outcome⟩).toList = place.awaits) :
    Ledger m { s.leave c kgmt outcome with retqueue := q' } := by
  refine ⟨h.work, fun p => ?_, fun p => ?_⟩
  · have hmove := countAt_update hc hplace CallerPlace.holds p .outside
    have hsum := h.results p
    have hqueue := hresults p
    have hreturned : (s.returns ++ [(⟨kgmt, outcome⟩ : Returned a)]).filterMap Returned.result? =
        s.returns.filterMap Returned.result? ++ (Returned.result? ⟨kgmt, outcome⟩).toList := by
      rw [List.filterMap_append]
      cases outcome <;> rfl
    rw [show (CallerPlace.outside : CallerPlace a).holds = [] from rfl, List.countP_nil] at hmove
    simp only [KgmSystem.leave, KgmSystem.setCaller, hreturned, List.countP_append]
    omega
  · have hmove := countAt_update hc hplace CallerPlace.awaits (p ·.nodes) .outside
    have hsum := h.callers p
    have hreturned : (s.returns ++ [(⟨kgmt, outcome⟩ : Returned a)]).filterMap Returned.served? =
        s.returns.filterMap Returned.served? ++ (Returned.served? ⟨kgmt, outcome⟩).toList := by
      rw [List.filterMap_append]
      cases outcome <;> rfl
    rw [show (CallerPlace.outside : CallerPlace a).awaits = [] from rfl, List.countP_nil] at hmove
    simp only [KgmSystem.leave, KgmSystem.setCaller, hreturned, hserved, List.countP_append]
    omega

/-- A caller that goes on collecting has put back what it held, or lost it. -/
theorem putBack {c : Nat} {kgmt kgmr : KgmThread a} {gate : Gate} (h : Ledger m s)
    (hc : c < s.numCallers) (hplace : s.callers c = .returning kgmt kgmr gate)
    {q' : Mailbox (KgmThread a)} {lost : List (KgmThread a)}
    (hqueue : ∀ p, q'.items.countP p + lost.countP p =
      s.retqueue.items.countP p + s.lost.countP p + [kgmr].countP p) :
    Ledger m { s.setCaller c (.collecting kgmt .waiting) with retqueue := q', lost := lost } := by
  refine ⟨h.work, fun p => ?_, fun p => ?_⟩
  · have hmove := countAt_update hc hplace CallerPlace.holds p (.collecting kgmt .waiting)
    have hsum := h.results p
    have hback := hqueue p
    simp only [CallerPlace.holds, List.countP_nil] at hmove
    simp only [KgmSystem.setCaller]
    omega
  · have hmove := countAt_update hc hplace CallerPlace.awaits (p ·.nodes) (.collecting kgmt .waiting)
    have hsum := h.callers p
    simp only [CallerPlace.awaits] at hmove
    simp only [KgmSystem.setCaller]
    omega

/-- A worker that goes on reading has written its result, or lost it. -/
theorem write {w : Nat} {kgmt : KgmThread a} {gate : Gate} (h : Ledger m s) (hw : w < m.numWorkers)
    (hplace : s.workers w = .writing kgmt gate) {q' : Mailbox (KgmThread a)}
    {lost : List (KgmThread a)}
    (hqueue : ∀ p, q'.items.countP p + lost.countP p =
      s.retqueue.items.countP p + s.lost.countP p + [kgmt].countP p) :
    Ledger m { s.setWorker w (.reading .waiting) with retqueue := q', lost := lost } := by
  refine ⟨fun p => ?_, fun p => ?_, h.callers⟩
  · have hmove := countAt_update hw hplace WorkerPlace.executes (p ·.nodes) (.reading .waiting)
    have hsum := h.work p
    simp only [WorkerPlace.executes] at hmove
    simp only [KgmSystem.setWorker]
    omega
  · have hmove := countAt_update hw hplace WorkerPlace.holds p (.reading .waiting)
    have hsum := h.results p
    have hback := hqueue p
    simp only [WorkerPlace.holds, List.countP_nil] at hmove
    simp only [KgmSystem.setWorker]
    omega

/-- Every step keeps the ledger. -/
theorem step (h : Ledger m s) (hmoves : Moves m s act s') : Ledger m s' := by
  cases hmoves with
  | stay => exact h
  | call hc hplace => exact h.of_caller hc hplace rfl rfl
  | issueWait hc hplace => exact h.of_caller hc hplace rfl rfl
  | @issue c kgmt q' hc hplace hputs =>
    refine ⟨fun p => ?_, fun p => ?_, fun p => ?_⟩
    · have hsum := h.work p
      simp only [KgmSystem.setCaller, hputs.items, List.countP_append]
      omega
    · have hmove := countAt_update hc hplace CallerPlace.holds p (.collecting kgmt .waiting)
      have hsum := h.results p
      simp only [CallerPlace.holds] at hmove
      simp only [KgmSystem.setCaller]
      omega
    · have hmove := countAt_update hc hplace CallerPlace.awaits (p ·.nodes)
        (.collecting kgmt .waiting)
      have hsum := h.callers p
      simp only [CallerPlace.awaits, List.countP_nil] at hmove
      simp only [KgmSystem.setCaller, List.countP_append]
      omega
  | refuse hc hplace => exact h.leave hc hplace (fun p => rfl) rfl
  | collectWait hc hplace => exact h.of_caller hc hplace rfl rfl
  | collectOwn hc hplace htakes =>
    refine h.leave hc hplace (fun p => ?_) rfl
    rw [htakes.items, ← List.singleton_append, List.countP_append]
    exact Nat.add_comm (List.countP p [_]) _
  | @collectOther c kgmt kgmr q' hc hplace htakes =>
    refine ⟨h.work, fun p => ?_, fun p => ?_⟩
    · have hmove := countAt_update hc hplace CallerPlace.holds p (.returning kgmt kgmr .waiting)
      have hsum := h.results p
      rw [htakes.items, ← List.singleton_append, List.countP_append] at hsum
      simp only [CallerPlace.holds, List.countP_nil] at hmove
      simp only [KgmSystem.setCaller]
      omega
    · have hmove := countAt_update hc hplace CallerPlace.awaits (p ·.nodes)
        (.returning kgmt kgmr .waiting)
      have hsum := h.callers p
      simp only [CallerPlace.awaits] at hmove
      simp only [KgmSystem.setCaller]
      omega
  | retry hc hplace => exact h.of_caller hc hplace rfl rfl
  | giveUp hc hplace => exact h.leave hc hplace (fun p => rfl) rfl
  | returnWait hc hplace => exact h.of_caller hc hplace rfl rfl
  | putBack hc hplace hputs =>
    refine h.putBack hc hplace fun p => ?_
    simp only [KgmSystem.setCaller, hputs.items, List.countP_append]
    omega
  | loseOther hc hplace =>
    refine h.putBack hc hplace fun p => ?_
    simp only [KgmSystem.setCaller, List.countP_append]
    omega
  | readWait hw hplace => exact h.of_worker hw hplace rfl rfl
  | @read w kgmt q' hw hplace htakes =>
    refine ⟨fun p => ?_, fun p => ?_, h.callers⟩
    · have hmove := countAt_update hw hplace WorkerPlace.executes (p ·.nodes)
        (.executing { kgmt with numNodesExecuted := 0 })
      have hsum := h.work p
      rw [htakes.items, ← List.singleton_append, List.countP_append] at hsum
      -- the count of executed nodes is not among the fields that `nodes` has
      have hsame : [{ kgmt with numNodesExecuted := 0 }].countP (p ·.nodes) =
          [kgmt].countP (p ·.nodes) := rfl
      simp only [WorkerPlace.executes, List.countP_nil, hsame] at hmove
      simp only [KgmSystem.setWorker]
      omega
    · have hmove := countAt_update hw hplace WorkerPlace.holds p
        (.executing { kgmt with numNodesExecuted := 0 })
      have hsum := h.results p
      simp only [WorkerPlace.holds] at hmove
      simp only [KgmSystem.setWorker]
      omega
  | exit hw hplace => exact h.of_worker hw hplace rfl rfl
  | writeWait hw hplace => exact h.of_worker hw hplace rfl rfl
  | write hw hplace hputs =>
    refine h.write hw hplace fun p => ?_
    simp only [KgmSystem.setWorker, hputs.items, List.countP_append]
    omega
  | loseResult hw hplace =>
    refine h.write hw hplace fun p => ?_
    simp only [KgmSystem.setWorker, List.countP_append]
    omega
  | @finish w kgmt hw hplace processed =>
    refine ⟨fun p => ?_, fun p => ?_, h.callers⟩
    · have hmove := countAt_update hw hplace WorkerPlace.executes (p ·.nodes)
        (.writing { kgmt with numNodesExecuted := processed } .waiting)
      have hsum := h.work p
      have hsame : [{ kgmt with numNodesExecuted := processed }].countP (p ·.nodes) =
          [kgmt].countP (p ·.nodes) := rfl
      simp only [WorkerPlace.executes, List.countP_nil] at hmove
      simp only [KgmSystem.setWorker, List.countP_append, hsame]
      omega
    · have hmove := countAt_update hw hplace WorkerPlace.holds p
        (.writing { kgmt with numNodesExecuted := processed } .waiting)
      have hsum := h.results p
      simp only [WorkerPlace.holds, List.countP_nil] at hmove
      simp only [KgmSystem.setWorker, List.countP_append]
      omega
  | popWork => exact ⟨h.work, h.results, h.callers⟩
  | popRet => exact ⟨h.work, h.results, h.callers⟩

/-- A manager that was just created has nothing to account for. -/
theorem init (m : Manager) (capacity numCallers : Nat) :
    Ledger m (KgmSystem.init (.create capacity) (.create capacity) numCallers : MailSystem a) := by
  have hexecutes : (WorkerPlace.reading .waiting : WorkerPlace a).executes = [] := rfl
  have hwrites : (WorkerPlace.reading .waiting : WorkerPlace a).holds = [] := rfl
  have hawaits : (CallerPlace.outside : CallerPlace a).awaits = [] := rfl
  have hholds : (CallerPlace.outside : CallerPlace a).holds = [] := rfl
  refine ⟨fun p => ?_, fun p => ?_, fun p => ?_⟩
  · simp only [KgmSystem.init, countAt_const hexecutes, Mailbox.items_create, List.countP_nil]
  · simp only [KgmSystem.init, countAt_const hwrites, countAt_const hholds, Mailbox.items_create,
      List.filterMap_nil, List.countP_nil]
  · simp only [KgmSystem.init, countAt_const hawaits, List.filterMap_nil, List.countP_nil]

end Ledger

end DVP.Kgm
