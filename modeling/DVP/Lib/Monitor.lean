import Mathlib.Logic.Function.Basic

/-!
# Monitors

Threads that work under one lock and wait on one condition variable. A wait releases the lock and
parks the thread in one step, and a broadcast wakes all parked threads, each of which goes on in a
region of its own.

`NoLostWakeup` says that no thread is parked while what the threads wait for is there. It is kept if
a thread parks only while that is not there, and if what brings it is followed by a broadcast in
the same region.
-/

namespace Monitor

/-- Where a thread is. -/
inductive Place where
  /-- It is in no wait. -/
  | outside
  /-- It sleeps on the condition variable. -/
  | parked
  /-- It was woken, and its wait goes on as soon as it has the lock. -/
  | woken
  deriving DecidableEq, Repr

variable {ι : Type} {places : ι → Place} {ready : Bool} {t : ι} {p : Place}

/-- A broadcast wakes every parked thread. -/
def broadcast (places : ι → Place) (t : ι) : Place :=
  match places t with
  | .parked => .woken
  | place => place

theorem broadcast_ne_parked (t : ι) : broadcast places t ≠ .parked := by
  unfold broadcast
  cases places t <;> simp

/-- No thread sleeps while what it waits for is there. -/
def NoLostWakeup (ready : Bool) (places : ι → Place) : Prop :=
  ¬∃ t, places t = .parked ∧ ready = true

theorem NoLostWakeup.broadcast (ready : Bool) (places : ι → Place) :
    NoLostWakeup ready (broadcast places) :=
  fun ⟨t, hparked, _⟩ => broadcast_ne_parked t hparked

theorem NoLostWakeup.of_not_ready (places : ι → Place) : NoLostWakeup false places :=
  fun ⟨_, _, hready⟩ => Bool.noConfusion hready

variable [DecidableEq ι]

/-- A thread that moves elsewhere than to sleep. -/
theorem NoLostWakeup.update (h : NoLostWakeup ready places) (hp : p ≠ .parked) :
    NoLostWakeup ready (Function.update places t p) := by
  rintro ⟨u, hparked, hready⟩
  by_cases hu : u = t
  · subst hu
    exact hp (by simpa using hparked)
  · exact h ⟨u, by simpa [hu] using hparked, hready⟩

/-- A thread that goes to sleep while what it waits for is there. -/
theorem not_noLostWakeup_park : ¬NoLostWakeup true (Function.update places t .parked) :=
  fun h => h ⟨t, Function.update_self .., rfl⟩

end Monitor
