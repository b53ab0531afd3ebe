import DVP.Lib.Fifo

/-!
# Mailboxes

A bounded queue that threads share and that can be closed. A thread that wants to put an item in, or
to take one out, first waits until the mailbox looks ready, and then makes its attempt. Other threads
act between the two, so an attempt may fail: `put` finds the mailbox full again or `take` empty. A
closed mailbox lets everybody in and refuses everything.
-/

/-- A bounded queue that can be closed. -/
structure Mailbox (α : Type) where
  fifo : Fifo α
  closed : Bool

namespace Mailbox

variable {α : Type} {m : Mailbox α} {x : α}

/-- The mailbox without items. -/
def create (capacity : Nat) : Mailbox α := ⟨.empty capacity, false⟩

/-- The items of a mailbox, oldest first. -/
def items (m : Mailbox α) : List α := m.fifo.items

/-- Whether a thread that waits for an item goes on. -/
def readable (m : Mailbox α) : Bool := m.closed || !m.items.isEmpty

/-- Whether a thread that waits for room goes on. -/
def writable (m : Mailbox α) : Bool := m.closed || decide (m.items.length < m.fifo.capacity)

/-- The attempt to put an item in. -/
def put (m : Mailbox α) (x : α) : Mailbox α × Bool :=
  if m.closed then (m, false)
  else
    match m.fifo.push x with
    | some fifo => ({ m with fifo := fifo }, true)
    | none => (m, false)

/-- The attempt to take the oldest item. -/
def take (m : Mailbox α) : Mailbox α × Option α :=
  if m.closed then (m, none)
  else
    match m.fifo.pop with
    | some (x, fifo) => ({ m with fifo := fifo }, some x)
    | none => (m, none)

/-- No item goes in or out from now on. -/
def close (m : Mailbox α) : Mailbox α := { m with closed := true }

@[simp] theorem items_create (capacity : Nat) : (create capacity : Mailbox α).items = [] := rfl

@[simp] theorem items_close : m.close.items = m.items := rfl

/-- What an attempt to put an item in does: append it, or nothing. -/
theorem put_cases (m : Mailbox α) (x : α) :
    (m.closed = false ∧ m.items.length < m.fifo.capacity ∧
      ∃ m', m.put x = (m', true) ∧ m'.items = m.items ++ [x] ∧ m'.closed = false ∧
        m'.fifo.capacity = m.fifo.capacity) ∨
    ((m.closed = true ∨ m.fifo.capacity ≤ m.items.length) ∧ m.put x = (m, false)) := by
  cases hclosed : m.closed with
  | true => exact .inr ⟨.inl rfl, by simp [put, hclosed]⟩
  | false =>
    by_cases hroom : m.items.length < m.fifo.capacity
    · obtain ⟨fifo, hpush⟩ := Fifo.exists_push (x := x) hroom
      refine .inl ⟨rfl, hroom, { m with fifo := fifo }, ?_, Fifo.items_of_push hpush, hclosed,
        Fifo.capacity_of_push hpush⟩
      simp [put, hclosed, hpush]
    · refine .inr ⟨.inr (Nat.not_lt.mp hroom), ?_⟩
      have hfull : m.fifo.push x = none := dif_neg hroom
      simp [put, hclosed, hfull]

/-- What an attempt to take an item does: remove the oldest one, or nothing. -/
theorem take_cases (m : Mailbox α) :
    (m.closed = false ∧ ∃ x m', m.take = (m', some x) ∧ m.items = x :: m'.items ∧
      m'.closed = false ∧ m'.fifo.capacity = m.fifo.capacity) ∨
    ((m.closed = true ∨ m.items = []) ∧ m.take = (m, none)) := by
  cases hclosed : m.closed with
  | true => exact .inr ⟨.inl rfl, by simp [take, hclosed]⟩
  | false =>
    cases hpop : m.fifo.pop with
    | none => exact .inr ⟨.inr (Fifo.pop_eq_none_iff.mp hpop), by simp [take, hclosed, hpop]⟩
    | some found =>
      obtain ⟨x, fifo⟩ := found
      refine .inl ⟨rfl, x, { m with fifo := fifo }, ?_, Fifo.items_of_pop hpop, hclosed,
        Fifo.capacity_of_pop hpop⟩
      simp [take, hclosed, hpop]

/-- An open mailbox lets a reader in exactly when it has an item. -/
theorem readable_iff (h : m.closed = false) : m.readable = true ↔ m.items ≠ [] := by
  simp [readable, h]

/-- An open mailbox lets a writer in exactly when it has room. -/
theorem writable_iff (h : m.closed = false) :
    m.writable = true ↔ m.items.length < m.fifo.capacity := by
  simp [writable, h]

end Mailbox
