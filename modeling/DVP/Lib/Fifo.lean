import Mathlib.Data.List.Basic

/-!
# Bounded queues

A first-in first-out queue that holds at most `capacity` items. `push` refuses an item when the
queue is full and `pop` finds nothing when it is empty.
-/

/-- A queue of at most `capacity` items, oldest first. -/
structure Fifo (α : Type) where
  capacity : Nat
  items : List α
  bound : items.length ≤ capacity

namespace Fifo

variable {α : Type} {q q' : Fifo α} {x : α}

/-- The queue without items. -/
def empty (capacity : Nat) : Fifo α := ⟨capacity, [], Nat.zero_le _⟩

/-- Append an item, if there is room. -/
def push (q : Fifo α) (x : α) : Option (Fifo α) :=
  if h : q.items.length < q.capacity then
    some ⟨q.capacity, q.items ++ [x], by rwa [List.length_append]⟩
  else none

/-- Remove the oldest item, if there is one. -/
def pop : Fifo α → Option (α × Fifo α)
  | ⟨_, [], _⟩ => none
  | ⟨capacity, x :: items, bound⟩ => some (x, ⟨capacity, items, Nat.le_of_succ_le bound⟩)

@[simp] theorem items_empty (capacity : Nat) : (empty capacity : Fifo α).items = [] := rfl

/-- An item that is pushed comes last. -/
theorem items_of_push (h : q.push x = some q') : q'.items = q.items ++ [x] := by
  rw [push] at h
  split at h
  · cases h
    rfl
  · cases h

theorem capacity_of_push (h : q.push x = some q') : q'.capacity = q.capacity := by
  rw [push] at h
  split at h
  · cases h
    rfl
  · cases h

/-- There is room for an item in a queue that is not full. -/
theorem exists_push (h : q.items.length < q.capacity) : ∃ q', q.push x = some q' :=
  ⟨_, dif_pos h⟩

/-- The item that is popped came first. -/
theorem items_of_pop (h : q.pop = some (x, q')) : q.items = x :: q'.items := by
  obtain ⟨capacity, items, bound⟩ := q
  cases items with
  | nil => cases h
  | cons y items =>
    cases h
    rfl

theorem capacity_of_pop (h : q.pop = some (x, q')) : q'.capacity = q.capacity := by
  obtain ⟨capacity, items, bound⟩ := q
  cases items with
  | nil => cases h
  | cons y items =>
    cases h
    rfl

/-- There is nothing to pop exactly when the queue is empty. -/
theorem pop_eq_none_iff : q.pop = none ↔ q.items = [] := by
  obtain ⟨capacity, items, bound⟩ := q
  cases items with
  | nil => exact iff_of_true rfl rfl
  | cons y items => exact iff_of_false (by simp [pop]) (by simp)

end Fifo
