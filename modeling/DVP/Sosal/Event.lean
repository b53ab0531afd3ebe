import DVP.Lib.Monitor
import DVP.Lib.Run
import DVP.Sosal.Types

/-!
# The event

The POSIX event of `source/sosal/event.c`: a flag under a mutex, with a condition variable for the
threads that wait without a timeout. A region between `pthread_mutex_lock` and
`pthread_mutex_unlock` is one step, and `pthread_cond_wait` ends one region and starts the next.

A manual-reset event tests its flag before it waits. An autoreset event waits without a look at the
flag, so an `event_set` that comes before the `event_wait` is lost. Apart from such calls no thread
sleeps while the event is set, and a set autoreset event lets one `event_wait` return `true_e`.
-/

namespace DVP.Sosal

open Monitor

/-- `event_t`, with the threads that may use it. -/
structure Event where
  autoreset : Bool
  set : Bool
  threads : Nat → Monitor.Place

/-- What `pthread_cond_wait` and `pthread_cond_timedwait` return. -/
inductive Retcode where
  | success
  | timedOut
  | failed
  deriving DecidableEq, Repr

/-- The end of `event_timed_wait`, after the condition variable has woken the thread. -/
def eventTimedWait (retcode : Retcode) (set : Bool) : Bool :=
  match retcode, set with
  | .timedOut, false => false
  -- the signal is set although the wait has timed out
  | .timedOut, true => true
  -- someone has lowered the flag or never set it
  | .success, false => false
  | .success, true => true
  | .failed, _ => false

/-- The end of `event_wait` after `event_timed_wait`. -/
def eventWaitEnd (e : Event) (ret : Bool) : Event × Bool :=
  if !e.autoreset then (e, ret)
  else if ret = true ∧ e.set = true then ({ e with set := false }, ret)
  else if ret = true ∧ e.set = false then (e, false)
  else (e, ret)

/-- A mutex region that a thread runs. -/
inductive EventOp where
  /-- `event_set`. -/
  | set (t : Nat)
  /-- `event_reset`. -/
  | reset (t : Nat)
  /-- `event_wait` with `EVENT_FOREVER`, up to its end or its `pthread_cond_wait`. -/
  | wait (t : Nat)
  /-- The rest of `event_wait` after its `pthread_cond_wait`. -/
  | wake (t : Nat)
  deriving DecidableEq, Repr

/-- The region sets the event. -/
def EventOp.sets : EventOp → Bool
  | .set _ => true
  | _ => false

/-- The region is one of `event_wait`. -/
def EventOp.waits : EventOp → Bool
  | .wait _ => true
  | .wake _ => true
  | _ => false

/-- `event_init`. -/
def eventInit (autoreset : Bool) : Event :=
  { autoreset, set := false, threads := fun _ => .outside }

/-- The thread goes to a place. -/
def Event.goto (e : Event) (t : Nat) (p : Monitor.Place) : Event :=
  { e with threads := Function.update e.threads t p }

/-- One region, and what the call returns if it ends there. A thread in a wait makes no other
call, and it goes on only when it was woken. -/
def eventStep (e : Event) : EventOp → Except Fault (Event × Option Bool)
  | .set t =>
    if e.threads t = .outside then
      .ok ({ e with set := true, threads := broadcast e.threads }, some true)
    else .error .blocked
  | .reset t =>
    if e.threads t = .outside then .ok ({ e with set := false }, some true)
    else .error .blocked
  | .wait t =>
    if e.threads t = .outside then
      if !e.autoreset then
        if e.set = false then .ok (e.goto t .parked, none) else .ok (e, some true)
      else .ok (e.goto t .parked, none)
    else .error .blocked
  | .wake t =>
    if e.threads t = .woken then
      let (e', ret) := eventWaitEnd (e.goto t .outside) (eventTimedWait .success e.set)
      .ok (e', some ret)
    else .error .blocked

/-- No thread is parked in `event_wait` while the event is set. -/
def Event.NoLostWakeup (e : Event) : Prop := Monitor.NoLostWakeup e.set e.threads

/-- The operation calls `event_wait` on an autoreset event that is set already. -/
def EventOp.WaitsLate (e : Event) (op : EventOp) : Prop :=
  ∃ t, op = .wait t ∧ e.threads t = .outside ∧ e.autoreset = true ∧ e.set = true

section Steps

variable {e e' : Event} {op : EventOp} {r : Option Bool}

/-- A thread that was woken returns whether the event is set, and clears an autoreset event. -/
theorem eventWaitEnd_eq (t : Nat) :
    eventWaitEnd (e.goto t .outside) (eventTimedWait .success e.set) =
      ({ e.goto t .outside with set := e.set && !e.autoreset }, e.set) := by
  obtain ⟨autoreset, set, threads⟩ := e
  cases autoreset <;> cases set <;> rfl

/-- The cases of a step that ends. -/
inductive EventCase (e : Event) : EventOp → Event → Option Bool → Prop where
  | set {t : Nat} (h : e.threads t = .outside) :
      EventCase e (.set t) { e with set := true, threads := broadcast e.threads } (some true)
  | reset {t : Nat} (h : e.threads t = .outside) :
      EventCase e (.reset t) { e with set := false } (some true)
  | pass {t : Nat} (h : e.threads t = .outside) (hauto : e.autoreset = false)
      (hset : e.set = true) : EventCase e (.wait t) e (some true)
  | park {t : Nat} (h : e.threads t = .outside) (hpark : e.autoreset = false → e.set = false) :
      EventCase e (.wait t) (e.goto t .parked) none
  | wake {t : Nat} (h : e.threads t = .woken) :
      EventCase e (.wake t) { e.goto t .outside with set := e.set && !e.autoreset } (some e.set)

theorem eventStep_eq_ok (h : eventStep e op = .ok (e', r)) : EventCase e op e' r := by
  cases op with
  | set t =>
    simp only [eventStep] at h
    split at h
    case isTrue hplace =>
      cases h
      exact .set hplace
    case isFalse => cases h
  | reset t =>
    simp only [eventStep] at h
    split at h
    case isTrue hplace =>
      cases h
      exact .reset hplace
    case isFalse => cases h
  | wait t =>
    simp only [eventStep] at h
    split at h
    case isTrue hplace =>
      cases hauto : e.autoreset with
      | true =>
        simp only [hauto, Bool.not_true, Bool.false_eq_true, if_false] at h
        cases h
        exact .park hplace fun hmanual => by simp [hauto] at hmanual
      | false =>
        simp only [hauto, Bool.not_false, if_true] at h
        split at h
        case isTrue hset =>
          cases h
          exact .park hplace fun _ => hset
        case isFalse hset =>
          cases h
          exact .pass hplace hauto (by simpa using hset)
    case isFalse => cases h
  | wake t =>
    simp only [eventStep] at h
    split at h
    case isTrue hplace =>
      rw [eventWaitEnd_eq] at h
      cases h
      exact .wake hplace
    case isFalse => cases h

theorem EventCase.autoreset (h : EventCase e op e' r) : e'.autoreset = e.autoreset := by
  cases h <;> rfl

/-- A region keeps the threads awake, unless it is a wait on an autoreset event that is set. -/
theorem EventCase.noLostWakeup (h : EventCase e op e' r) (he : e.NoLostWakeup)
    (hlate : ¬op.WaitsLate e) : e'.NoLostWakeup := by
  cases h with
  | set _ => exact .broadcast true e.threads
  | reset _ => exact .of_not_ready e.threads
  | pass _ _ _ => exact he
  | @park t hplace hpark =>
    -- a manual-reset event is tested first, and no autoreset one is waited for late
    have hset : e.set = false := by
      by_contra hset
      have hset := Bool.eq_true_of_not_eq_false hset
      refine hlate ⟨t, rfl, hplace, ?_, hset⟩
      by_contra hauto
      rw [hpark (Bool.eq_false_of_not_eq_true hauto)] at hset
      cases hset
    have hnone : (e.goto t .parked).set = false := hset
    rw [Event.NoLostWakeup, hnone]
    exact .of_not_ready _
  | wake _ =>
    -- the thread that leaves was woken: who is parked was so before
    refine fun ⟨u, hparked, hready⟩ => ?_
    exact he.update (by decide) ⟨u, hparked, (Bool.and_eq_true_iff.mp hready).1⟩

/-- Between two calls of `event_set` an autoreset event lets one `event_wait` return `true_e`. -/
theorem EventCase.wakes (h : EventCase e op e' r) (hauto : e.autoreset = true)
    (hop : ∀ t, op ≠ .set t) :
    (op.waits && r == some true).toNat + e'.set.toNat ≤ e.set.toNat := by
  cases h with
  | @set t _ => exact absurd rfl (hop t)
  | reset _ => exact Nat.zero_le _
  | pass _ hmanual _ =>
    rw [hauto] at hmanual
    cases hmanual
  | park _ _ => exact (Nat.zero_add _).le
  | wake _ =>
    rw [hauto]
    cases e.set with
    | true => exact le_rfl
    | false => exact le_rfl

end Steps

/-- How many of the calls of `event_wait` have returned `true_e`. -/
def trueWaits (ops : List EventOp) (rs : List (Option Bool)) : Nat :=
  (ops.zip rs).countP fun x => x.1.waits && x.2 == some true

/-- In the regions of an autoreset event after each `event_set`, and up to the next one, at most one
`event_wait` returns `true_e`, and none does before the first. -/
def SetOnce (ops : List EventOp) : Prop :=
  ∀ before between after e e' rs rs', ops = before ++ between ++ after →
    Machine.run eventStep (eventInit true) before = .ok (e, rs) →
    Machine.run eventStep e between = .ok (e', rs') → (∀ op ∈ between, ¬op.sets) →
    trueWaits between rs' ≤ if before.any EventOp.sets then 1 else 0

theorem trueWaits_le {e e' : Event} {ops : List EventOp} {rs : List (Option Bool)}
    (hauto : e.autoreset = true) (hops : ∀ op ∈ ops, ¬op.sets)
    (hrun : Machine.run eventStep e ops = .ok (e', rs)) :
    trueWaits ops rs + e'.set.toNat ≤ e.set.toNat := by
  induction ops generalizing e rs with
  | nil =>
    cases hrun
    exact (Nat.zero_add _).le
  | cons op ops ih =>
    obtain ⟨e₁, r, rs', hstep, hrest, rfl⟩ := Machine.run_cons_eq_ok hrun
    -- a wait that returns `true_e` takes `set` with it, and no region sets it again
    obtain ⟨hop, hops⟩ := List.forall_mem_cons.mp hops
    have hcase := eventStep_eq_ok hstep
    have hfirst := hcase.wakes hauto fun t ht => hop (by rw [ht]; rfl)
    have hafter := ih (hcase.autoreset.trans hauto) hops hrest
    have hcons : trueWaits (op :: ops) (r :: rs') =
        trueWaits ops rs' + (op.waits && r == some true).toNat := by
      rw [trueWaits, List.zip_cons_cons, List.countP_cons, trueWaits]
      cases op.waits && r == some true with
      | true => simp
      | false => simp
    omega

/-- The event is set only after an `event_set`. -/
theorem set_toNat_le {e e' : Event} {ops : List EventOp} {rs : List (Option Bool)}
    (hrun : Machine.run eventStep e ops = .ok (e', rs)) (hauto : e.autoreset = true) :
    e'.set.toNat ≤ if ops.any EventOp.sets then 1 else e.set.toNat := by
  split
  case isTrue => exact Bool.toNat_le e'.set
  case isFalse hnone =>
    have hops : ∀ op ∈ ops, ¬op.sets := by simpa using hnone
    have hle := trueWaits_le hauto hops hrun
    omega

theorem setOnce (ops : List EventOp) : SetOnce ops := by
  intro before between after e e' rs rs' _ hbefore hbetween hno
  have hauto : e.autoreset = true := by
    refine Machine.run_invariant_of_ok (I := fun e => e.autoreset = true) (C := fun _ _ => True)
      (fun e op e' r he _ hstep => (eventStep_eq_ok hstep).autoreset.trans he) rfl
      (Machine.meets_of_forall fun _ _ _ => trivial) hbefore
  have hset := set_toNat_le hbefore rfl
  have hwaits := trueWaits_le hauto hno hbetween
  have hinit : (eventInit true).set.toNat = 0 := rfl
  rw [hinit] at hset
  omega

/-- In all states of the run no thread is parked while the event is set, and each `event_set` of an
autoreset event makes at most one `event_wait` return `true_e`. -/
def WakesAll (autoreset : Bool) (ops : List EventOp) : Prop :=
  Machine.Always eventStep Event.NoLostWakeup (eventInit autoreset) ops ∧
    (autoreset = true → SetOnce ops)

/-- A thread is left asleep by the first wait on an autoreset event that is set, and only so. -/
theorem always_noLostWakeup_iff {autoreset : Bool} {ops : List EventOp} :
    Machine.Always eventStep Event.NoLostWakeup (eventInit autoreset) ops ↔
      Machine.Meets eventStep (fun e op => ¬op.WaitsLate e) (eventInit autoreset) ops := by
  refine Machine.always_iff_meets (I := Event.NoLostWakeup) (fun _ h => h)
    (fun e op e' r he hC hstep => (eventStep_eq_ok hstep).noLostWakeup he hC)
    (fun e op _ hlate => ?_) (.of_not_ready _)
  obtain ⟨t, rfl, hplace, hauto, hset⟩ := not_not.mp hlate
  refine ⟨e.goto t .parked, none, by simp [eventStep, hplace, hauto], ?_⟩
  rw [Event.NoLostWakeup, show (e.goto t .parked).set = true from hset]
  exact not_noLostWakeup_park

/-- No run of a manual-reset event has such a wait. -/
theorem meets_manual (ops : List EventOp) :
    Machine.Meets eventStep (fun e op => ¬op.WaitsLate e) (eventInit false) ops := by
  refine Machine.Meets.of_invariant (I := fun e => e.autoreset = false) (C := fun _ _ => True)
    (fun e op e' r he _ hstep => (eventStep_eq_ok hstep).autoreset.trans he)
    (fun e op he _ => ?_) rfl (Machine.meets_of_forall fun _ _ _ => trivial)
  rintro ⟨t, -, -, hauto, -⟩
  rw [he] at hauto
  cases hauto

theorem wakesAll_manual (ops : List EventOp) : WakesAll false ops :=
  ⟨always_noLostWakeup_iff.mpr (meets_manual ops), fun h => Bool.noConfusion h⟩

/-- No wake-up is lost exactly in the runs in which no thread calls `event_wait` on an autoreset
event that is set. -/
theorem wakesAll_iff {autoreset : Bool} {ops : List EventOp} :
    WakesAll autoreset ops ↔
      Machine.Meets eventStep (fun e op => ¬op.WaitsLate e) (eventInit autoreset) ops := by
  constructor
  · exact fun h => always_noLostWakeup_iff.mp h.1
  · exact fun h => ⟨always_noLostWakeup_iff.mpr h, fun _ => setOnce ops⟩

/-- `VisionEngine::RunThread` sets the event before `WaitForCompletion` waits for it. -/
theorem not_wakesAll_set_wait :
    ¬∀ autoreset ops, WakesAll autoreset ops := by
  intro h
  have hlast := ((h true [.set 0, .wait 1]).1.2 _ _ rfl).2 _ _ rfl
  exact hlast ⟨1, rfl, rfl⟩

end DVP.Sosal
