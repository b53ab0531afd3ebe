import Mathlib.Tactic.Linarith

/-!
# Basic types of the sosal library

The integer width of `size_t`, and what a C call can do other than return.
-/

namespace DVP.Sosal

/-- The architectures `sosal/types.h` supports. -/
inductive Arch where
  | arch32
  | arch64
  deriving DecidableEq, Repr

namespace Arch

/-- The number of bits of `size_t`, of `value_t` and of a pointer. -/
def bits : Arch → Nat
  | arch32 => 32
  | arch64 => 64

/-- The number of values of `size_t`. -/
def size (a : Arch) : Nat := 2 ^ a.bits

/-- `sizeof(void *)`. -/
def ptrSize : Arch → Nat
  | arch32 => 4
  | arch64 => 8

/-- The conversion to `size_t`. -/
def wrap (a : Arch) (n : Nat) : Nat := n % a.size

/-- Addition of two `size_t`. -/
def add (a : Arch) (m n : Nat) : Nat := (m + n) % a.size

/-- Subtraction of two `size_t`, which wraps below zero. -/
def sub (a : Arch) (m n : Nat) : Nat := (m + (a.size - n % a.size)) % a.size

/-- Multiplication of two `size_t`. -/
def mul (a : Arch) (m n : Nat) : Nat := (m * n) % a.size

variable (a : Arch)

theorem size_pos : 0 < a.size := Nat.two_pow_pos _

theorem size_ge : 2 ^ 32 ≤ a.size := by cases a <;> decide

theorem wrap_lt (n : Nat) : a.wrap n < a.size := Nat.mod_lt _ a.size_pos

variable {a}

theorem add_of_lt {m n : Nat} (h : m + n < a.size) : a.add m n = m + n := Nat.mod_eq_of_lt h

theorem mul_of_lt {m n : Nat} (h : m * n < a.size) : a.mul m n = m * n := Nat.mod_eq_of_lt h

theorem sub_of_le {m n : Nat} (hnm : n ≤ m) (hm : m < a.size) : a.sub m n = m - n := by
  rw [sub, Nat.mod_eq_of_lt (show n < a.size by omega), show m + (a.size - n) = m - n + a.size by omega,
    Nat.add_mod_right, Nat.mod_eq_of_lt (by omega)]

end Arch

/-- What a call does when it does not return: C leaves it undefined, aborts, or never comes
back. -/
inductive Fault where
  /-- A `NULL` pointer is dereferenced. -/
  | nullPointer
  /-- A pointer to memory that was freed, or never allocated, is dereferenced. -/
  | badPointer
  /-- An access lies outside the object it addresses. -/
  | outOfBounds
  /-- An `assert` fails. -/
  | assertion
  /-- A loop runs forever. -/
  | noReturn
  /-- The caller waits for an event that is not set, or for a lock that it holds itself. -/
  | blocked
  deriving DecidableEq, Repr

section Calls

variable {α β : Type}

/-- A call that returned hands its result on. -/
@[simp]
theorem ok_bind (x : α) (f : α → Except Fault β) : (Except.ok x >>= f) = f x := rfl

theorem eq_ok_of_mem_toOption {x : α} {r : Except Fault α} (h : x ∈ r.toOption) : r = .ok x := by
  cases r with
  | error e => cases h
  | ok y =>
    cases h
    rfl

/-- A call that faulted ends its caller. -/
@[simp]
theorem error_bind (e : Fault) (f : α → Except Fault β) : (Except.error e >>= f) = .error e := rfl

@[simp]
theorem pure_eq_ok (x : α) : (pure x : Except Fault α) = .ok x := rfl

/-- The first of two calls returned if both together did. -/
theorem bind_eq_ok {x : Except Fault α} {f : α → Except Fault β} {y : β}
    (h : (x >>= f) = .ok y) : ∃ z, x = .ok z ∧ f z = .ok y := by
  cases x with
  | error e => cases h
  | ok z => exact ⟨z, rfl, h⟩

end Calls

end DVP.Sosal
